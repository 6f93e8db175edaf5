import Primer.Typing.Check

/-!
What checking asks of the rest of a program. Types and diagnostics depend on a program only through its
look-ups, and of a routine that is called only through its signature; so programs in which every name
stands for the same declarations, bodies and locals apart, give every expression the same type and find
the same problems in a routine.
-/

namespace Primer

/-- What a call asks of a routine. -/
def Routine.signature (r : Routine) : String × List Parameter × Option Ty :=
  (r.name, r.params, r.result)

/-- Every name stands for the same in both programs; of routines that is the signature. -/
structure Program.SameNames (p q : Program) : Prop where
  structure? : ∀ name, p.structure? name = q.structure? name
  constant? : ∀ name, p.constant? name = q.constant? name
  global? : ∀ name, p.global? name = q.global? name
  signature? : ∀ name,
    (p.routine? name).map Routine.signature = (q.routine? name).map Routine.signature

namespace Program.SameNames

variable {p q : Program}

/-! ## Types -/

section
variable (h : p.SameNames q) (r : Option Routine)
include h

/-- Names are looked up in the routine first, which is the same, and then in the program. -/
theorem lookup?_eq (name : String) : Scope.lookup? ⟨p, r⟩ name = Scope.lookup? ⟨q, r⟩ name := by
  simp only [Scope.lookup?, h.global?, h.constant?]

theorem isWritable_eq (target : Path) :
    Scope.isWritable ⟨p, r⟩ target = Scope.isWritable ⟨q, r⟩ target := by
  rw [Scope.isWritable, Scope.isWritable, h.lookup?_eq r]

/-- Structures are looked up by name. -/
theorem memberType_eq (t : Ty) (x : Ident) :
    Scope.memberType ⟨p, r⟩ t x = Scope.memberType ⟨q, r⟩ t x := by
  simp only [Scope.memberType, h.structure?]

end

mutual
/-- Types need only look-ups. A call asks for the signature of the routine, and the two programs agree on
that. -/
theorem typeOf_eq (h : p.SameNames q) (r : Option Routine) :
    ∀ e : Expr, Scope.typeOf ⟨p, r⟩ e = Scope.typeOf ⟨q, r⟩ e
  | .literal (.string _) => rfl
  | .literal (.real _) => rfl
  | .literal (.integer _) => rfl
  | .literal (.natural _) => rfl
  | .literal (.boolean _) => rfl
  | .path target => by rw [Scope.typeOf, Scope.typeOf, h.typeOfPath_eq r target]
  | .not i e => by rw [Scope.typeOf, Scope.typeOf, h.typeOf_eq r e]
  | .binary i o left right => by
    rw [Scope.typeOf, Scope.typeOf, h.typeOf_eq r left, h.typeOf_eq r right]

theorem typeOfPath_eq (h : p.SameNames q) (r : Option Routine) : ∀ target : Path,
    Scope.typeOfPath ⟨p, r⟩ target = Scope.typeOfPath ⟨q, r⟩ target
  | .var x => by rw [Scope.typeOfPath, Scope.typeOfPath, h.lookup?_eq r]
  | .call f args => by
    have hf := h.signature? f.name
    rw [Scope.typeOfPath, Scope.typeOfPath]
    -- the callee is found in both or in neither, and its signature is all that is used of it
    cases hp : p.routine? f.name with
    | none =>
      rw [hp, Option.map_none, eq_comm, Option.map_eq_none_iff] at hf
      rw [hf]
      rfl
    | some callee =>
      rw [hp, Option.map_some, eq_comm, Option.map_eq_some_iff] at hf
      obtain ⟨callee', hq, hsignature⟩ := hf
      simp only [Routine.signature, Prod.mk.injEq] at hsignature
      obtain ⟨hname, hparams, hresult⟩ := hsignature
      rw [hq]
      change (require _ _ _ >>= fun _ => _ >>= fun _ => pure callee.result) =
        (require _ _ _ >>= fun _ => _ >>= fun _ => pure callee'.result)
      rw [hname, hparams, hresult, h.checkArguments_eq r f callee.params args]
  | .index base i => by
    rw [Scope.typeOfPath, Scope.typeOfPath, h.typeOfPath_eq r base, h.typeOf_eq r i]
  | .member base x => by
    simp only [Scope.typeOfPath, h.typeOfPath_eq r base, h.memberType_eq r]
  | .method base m args => by
    simp only [Scope.typeOfPath, h.typeOfPath_eq r base, h.checkMethodArguments_eq r m _ _ args,
      h.isWritable_eq r]

theorem checkArguments_eq (h : p.SameNames q) (r : Option Routine) (f : Ident) :
    ∀ (ps : List Parameter) (args : List Expr),
    Scope.checkArguments ⟨p, r⟩ f ps args = Scope.checkArguments ⟨q, r⟩ f ps args
  | param :: ps, arg :: args => by
    have harg := h.typeOf_eq r arg
    have hrest := h.checkArguments_eq r f ps args
    cases arg with
    | path target =>
      simp only [Scope.checkArguments, h.isWritable_eq r, h.typeOfPath_eq r target, harg, hrest]
    | literal | not | binary => simp only [Scope.checkArguments, harg, hrest]
  | [], _ | _ :: _, [] => by
    unfold Scope.checkArguments
    rfl

theorem checkMethodArguments_eq (h : p.SameNames q) (r : Option Routine) (m : Ident) (element : Ty) :
    ∀ (ps : List Method.Param) (args : List Expr),
    Scope.checkMethodArguments ⟨p, r⟩ m element ps args =
      Scope.checkMethodArguments ⟨q, r⟩ m element ps args
  | param :: ps, arg :: args => by
    simp only [Scope.checkMethodArguments, h.typeOf_eq r arg,
      h.checkMethodArguments_eq r m element ps args]
  | [], _ | _ :: _, [] => by
    unfold Scope.checkMethodArguments
    rfl
end

section
variable (h : p.SameNames q) (r : Option Routine)
include h

theorem expectType_eq (e : Expr) (t : Ty) (i : Position) :
    Scope.expectType ⟨p, r⟩ e t i = Scope.expectType ⟨q, r⟩ e t i := by
  rw [Scope.expectType, Scope.expectType, h.typeOf_eq r]

/-- Whether a path may be written is decided by a look-up too. -/
theorem writableType_eq (target : Path) :
    Scope.writableType ⟨p, r⟩ target = Scope.writableType ⟨q, r⟩ target := by
  rw [Scope.writableType, Scope.writableType, h.typeOfPath_eq r, h.isWritable_eq r]

/-! ## Instructions -/

theorem checkCondition_eq (c : Expr) (i : Position) :
    Scope.checkCondition ⟨p, r⟩ c i = Scope.checkCondition ⟨q, r⟩ c i := by
  rw [Scope.checkCondition, Scope.checkCondition, h.typeOf_eq r]

theorem checkBound_eq (e : Expr) (i : Position) :
    Scope.checkBound ⟨p, r⟩ e i = Scope.checkBound ⟨q, r⟩ e i := by
  rw [Scope.checkBound, Scope.checkBound, h.typeOf_eq r]

theorem checkCounter_eq (x : Ident) :
    Scope.checkCounter ⟨p, r⟩ x = Scope.checkCounter ⟨q, r⟩ x := by
  rw [Scope.checkCounter, Scope.checkCounter, h.lookup?_eq r]

end

mutual
/-- Instructions are checked alike, as the expressions in them are. -/
theorem checkInstruction_eq (h : p.SameNames q) (r : Option Routine) : ∀ i : Instruction,
    Scope.checkInstruction ⟨p, r⟩ i = Scope.checkInstruction ⟨q, r⟩ i
  | .print i es => by simp only [Scope.checkInstruction, h.typeOf_eq r]
  | .read target => by rw [Scope.checkInstruction, Scope.checkInstruction, h.writableType_eq r]
  | .result i value => by simp only [Scope.checkInstruction, h.expectType_eq r]
  | .evaluate e => by simp only [Scope.checkInstruction, h.typeOfPath_eq r]
  | .assign i target value => by
    simp only [Scope.checkInstruction, h.writableType_eq r, h.expectType_eq r]
  | .branch i c body otherwise => by
    rw [Scope.checkInstruction, Scope.checkInstruction, h.checkCondition_eq r, h.checkBlock_eq r body,
      h.checkAlternatives_eq r otherwise]
  | .whileLoop i c body => by
    rw [Scope.checkInstruction, Scope.checkInstruction, h.checkCondition_eq r, h.checkBlock_eq r body]
  | .untilLoop i body c => by
    rw [Scope.checkInstruction, Scope.checkInstruction, h.checkCondition_eq r, h.checkBlock_eq r body]
  | .forLoop i x first last body => by
    rw [Scope.checkInstruction, Scope.checkInstruction, h.checkCounter_eq r, h.checkBound_eq r,
      h.checkBound_eq r, h.checkBlock_eq r body]
  | .guarded i c instruction => by
    rw [Scope.checkInstruction, Scope.checkInstruction, h.checkCondition_eq r,
      h.checkInstruction_eq r instruction]

theorem checkAlternatives_eq (h : p.SameNames q) (r : Option Routine) : ∀ a : Alternatives,
    Scope.checkAlternatives ⟨p, r⟩ a = Scope.checkAlternatives ⟨q, r⟩ a
  | .none => rfl
  | .otherwise body => by
    rw [Scope.checkAlternatives, Scope.checkAlternatives, h.checkBlock_eq r body]
  | .elsif i c body next => by
    rw [Scope.checkAlternatives, Scope.checkAlternatives, h.checkCondition_eq r, h.checkBlock_eq r body,
      h.checkAlternatives_eq r next]

theorem checkBlock_eq (h : p.SameNames q) (r : Option Routine) : ∀ body : List Instruction,
    Scope.checkBlock ⟨p, r⟩ body = Scope.checkBlock ⟨q, r⟩ body
  | [] => rfl
  | i :: body => by
    rw [Scope.checkBlock, Scope.checkBlock, h.checkInstruction_eq r i, h.checkBlock_eq r body]
end

/-! ## Declarations -/

section
variable (h : p.SameNames q)
include h

theorem checkType_eq (i : Position) (t : Ty) : p.checkType i t = q.checkType i t := by
  induction t with
  | vector element ih => exact ih
  | named name => rw [checkType, checkType, h.structure?]
  | _ => rfl

theorem checkSymbol_eq : p.checkSymbol = q.checkSymbol :=
  funext fun s => h.checkType_eq s.ident.position s.type

theorem checkStructure_eq : p.checkStructure = q.checkStructure := by
  funext s
  rw [checkStructure, checkStructure, h.checkSymbol_eq]

/-- The constants are given as a list, and the program is asked for names only. -/
theorem checkConstants_eq (earlier cs : List Constant) :
    p.checkConstants earlier cs = q.checkConstants earlier cs := by
  induction cs generalizing earlier with
  | nil => rfl
  | cons c cs ih => simp only [checkConstants, h.checkSymbol_eq, h.expectType_eq none, ih]

/-- Whether a name is that of a routine shows in the signatures. -/
theorem isSome_routine_eq (name : String) : ((p.function? name).isSome || (p.procedure? name).isSome) =
    ((q.function? name).isSome || (q.procedure? name).isSome) := by
  have hroutine (p : Program) : ((p.function? name).isSome || (p.procedure? name).isSome) =
      ((p.routine? name).map Routine.signature).isSome := by
    rw [Option.isSome_map, routine?]
    cases p.function? name <;> rfl
  rw [hroutine, hroutine, h.signature?]

theorem checkShadowing_eq : p.checkShadowing = q.checkShadowing := by
  funext s
  rw [checkShadowing, checkShadowing, h.structure?, Bool.or_assoc, Bool.or_assoc,
    h.isSome_routine_eq]

/-- The same problems are found in any routine, whichever of the two programs it is checked in. -/
theorem checkRoutine_eq : p.checkRoutine = q.checkRoutine := by
  funext r
  have htype : p.checkType r.ident.position = q.checkType r.ident.position :=
    funext fun t => h.checkType_eq r.ident.position t
  simp only [checkRoutine, h.checkShadowing_eq, h.checkSymbol_eq, htype, h.checkBlock_eq (some r)]

end

end Program.SameNames

end Primer

import Primer.Typing.Scope

/-!
Checking a program. Checking goes on after a problem, so that all of them are found, in the order of
the checks.
-/

namespace Primer

/-- The name that the target text gives to its own entry point. -/
def reservedProgramName : String := "main"

/-- The diagnostic of a check that failed. -/
def reported : Except Diagnostic α → List Diagnostic
  | .ok _ => []
  | .error d => [d]

/-- The names that were used before, by `seen` or by an earlier name. -/
def repeated (seen : List String) : List Ident → List Ident
  | [] => []
  | x :: xs =>
    if seen.contains x.name then x :: repeated seen xs else repeated (x.name :: seen) xs

def checkUnique (idents : List Ident) : List Diagnostic :=
  (repeated [] idents).map fun x => ⟨x.position, .duplicate x.name⟩

/-- Checks that a value of the type can be printed and read. -/
def requireScalar (position : Position) (type : Ty) : Except Diagnostic Unit :=
  require type.isScalar position (.notScalar type)

/-- Checks that an expression uses no names but those of the constants. -/
def checkConstantExpr (earlier : List Constant) : Expr → Except Diagnostic Unit
  | .literal _ => .ok ()
  | .path (.var x) =>
    require (earlier.any (·.name == x.name)) x.position (.notConstant x.name)
  | .path p => require false p.root.position (.notConstant p.root.name)
  | .not _ e => checkConstantExpr earlier e
  | .binary _ _ left right => do
    checkConstantExpr earlier left
    checkConstantExpr earlier right

namespace Scope

/-- The type of storage that has to be writable. -/
def writableType (cx : Scope) (p : Path) : Except Diagnostic Ty := do
  let type ← demand (← cx.typeOfPath p) p.root.position (.noValue p.root.name)
  require (cx.isWritable p) p.root.position (.notWritable p.root.name)
  return type

def checkCondition (cx : Scope) (condition : Expr) (fallback : Position) : List Diagnostic :=
  reported do
    let given ← cx.typeOf condition
    require (given == .boolean) (condition.position?.getD fallback) (.typeMismatch .boolean given)

/-- Checks a bound of a counting loop. -/
def checkBound (cx : Scope) (bound : Expr) (fallback : Position) : List Diagnostic :=
  reported do
    requireIndex (bound.position?.getD fallback) (← cx.typeOf bound)

def checkCounter (cx : Scope) (counter : Ident) : List Diagnostic :=
  match cx.lookup? counter.name with
  | some binding =>
    if binding.isWritable && binding.type.isIntegral then []
    else [⟨counter.position, .invalidCounter counter.name⟩]
  | none => [⟨counter.position, .invalidCounter counter.name⟩]

mutual
def checkInstruction (cx : Scope) : Instruction → List Diagnostic
  | .print position exprs =>
    exprs.flatMap fun e => reported do
      requireScalar (e.position?.getD position) (← cx.typeOf e)
  | .read target => reported do
    requireScalar target.root.position (← cx.writableType target)
  | .result position value => reported do
    match cx.routine.bind (·.result) with
    | some type => discard <| cx.expectType value type position
    | none =>
      require false position (.resultInProcedure ((cx.routine.map (·.name)).getD ""))
  | .evaluate e => reported do
    match e.path? with
    | some p =>
      if p.endsInCall then discard <| cx.typeOfPath p
      else require false (e.position?.getD default) .notAnInstruction
    | none => require false (e.position?.getD default) .notAnInstruction
  | .assign position target value => reported do
    let type ← cx.writableType target
    cx.expectType value type position
  | .branch position condition body otherwise =>
    cx.checkCondition condition position ++ cx.checkBlock body ++ cx.checkAlternatives otherwise
  | .whileLoop position condition body =>
    cx.checkCondition condition position ++ cx.checkBlock body
  | .untilLoop position body condition =>
    cx.checkBlock body ++ cx.checkCondition condition position
  | .forLoop position counter first last body =>
    cx.checkCounter counter ++ cx.checkBound first position ++ cx.checkBound last position ++
      cx.checkBlock body
  | .guarded position condition instruction =>
    cx.checkCondition condition position ++ cx.checkInstruction instruction

def checkAlternatives (cx : Scope) : Alternatives → List Diagnostic
  | .none => []
  | .otherwise body => cx.checkBlock body
  | .elsif position condition body next =>
    cx.checkCondition condition position ++ cx.checkBlock body ++ cx.checkAlternatives next

def checkBlock (cx : Scope) : List Instruction → List Diagnostic
  | [] => []
  | instruction :: body => cx.checkInstruction instruction ++ cx.checkBlock body
end

end Scope

namespace Program

/-- Checks that the structures a type refers to are declared. -/
def checkType (p : Program) (position : Position) : Ty → List Diagnostic
  | .vector element => p.checkType position element
  | .named name =>
    if (p.structure? name).isSome then [] else [⟨position, .undefinedStructure name⟩]
  | _ => []

def checkSymbol (p : Program) (s : Symbol) : List Diagnostic :=
  p.checkType s.ident.position s.type

def checkStructure (p : Program) (s : Structure) : List Diagnostic :=
  checkUnique (s.members.map (·.ident)) ++ s.members.flatMap p.checkSymbol

/-- Checks the constants in order, each after the earlier ones. -/
def checkConstants (p : Program) (earlier : List Constant) : List Constant → List Diagnostic
  | [] => []
  | c :: cs =>
    p.checkSymbol c.symbol ++
      reported (do
        checkConstantExpr earlier c.value
        Scope.expectType ⟨p, none⟩ c.value c.symbol.type c.symbol.ident.position) ++
      p.checkConstants (earlier ++ [c]) cs

/-- Checks that the name of a parameter or local is that of no structure, function or procedure. -/
def checkShadowing (p : Program) (s : Symbol) : List Diagnostic :=
  if (p.structure? s.name).isSome || (p.function? s.name).isSome || (p.procedure? s.name).isSome then
    [⟨s.ident.position, .shadowsDeclaration s.name⟩]
  else []

def checkRoutine (p : Program) (r : Routine) : List Diagnostic :=
  let symbols := r.params.map (·.symbol) ++ r.locals
  checkUnique (symbols.map (·.ident)) ++
    symbols.flatMap (fun s => p.checkShadowing s ++ p.checkSymbol s) ++
    ((r.result.map (p.checkType r.ident.position)).getD []) ++
    Scope.checkBlock ⟨p, some r⟩ r.body

/-- Whether a routine takes the arguments of the program and gives an integer. -/
def isEntry (r : Routine) : Bool :=
  (match r.params with
    | [param] => param.mode == .input && param.symbol.type == .vector .string
    | _ => false) && r.result == some .integer

def checkEntry (p : Program) : List Diagnostic :=
  match p.entry? with
  | none => [⟨p.ident.position, .missingEntry p.name⟩]
  | some entry =>
    if isEntry entry then [] else [⟨entry.ident.position, .invalidEntrySignature entry.name⟩]

def checkName (p : Program) : List Diagnostic :=
  if p.name == reservedProgramName then [⟨p.ident.position, .reservedProgramName p.name⟩] else []

/-- The names that the program declares, which share one space. -/
def declaredIdents (p : Program) : List Ident :=
  p.structures.map (·.ident) ++ p.constants.map (·.symbol.ident) ++ p.globals.map (·.ident) ++
    p.functions.map (·.ident) ++ p.procedures.map (·.ident)

/-- All problems of a program. -/
def check (p : Program) : List Diagnostic :=
  p.checkName ++ checkUnique p.declaredIdents ++ p.structures.flatMap p.checkStructure ++
    p.checkConstants [] p.constants ++ p.globals.flatMap p.checkSymbol ++
    p.routines.flatMap p.checkRoutine ++ p.checkEntry

end Program

end Primer
